import Mathlib.Data.List.Nodup
import Myos.Sec.Reload

namespace Myos.Sec

theorem position_some {names : List Name} {name : Name} {i : Nat} (found : position names name = some i)
    (small : names.length < U16_MAX) : names[i]? = some name := by
  refine Lib.mapped found fun j at_ => ?_
  obtain ⟨below, same, _⟩ := List.findIdx?_eq_some_iff_getElem.mp at_
  have fits : j % 2 ^ 16 = j := Nat.mod_eq_of_lt (Nat.lt_of_lt_of_le below (Nat.le_of_lt (Nat.lt_of_lt_of_le small (by decide))))
  rw [fits, List.getElem?_eq_getElem below, eq_of_beq same]

theorem position_none {names : List Name} {name : Name} : position names name = none ↔ name ∉ names := by
  simp only [position, Option.map_eq_none_iff, List.findIdx?_eq_none_iff, beq_eq_false_iff_ne, ne_eq]
  exact ⟨fun apart mem => apart name mem rfl, fun absent x mem same => absent (same ▸ mem)⟩

theorem ne_boot_of_small {α : Type} {table : List α} {c : Ctx} (small : table.length < U16_MAX) (below : c.user < table.length) :
    c ≠ .BOOT := by
  rintro rfl
  exact Nat.lt_asymm small below

namespace Policy

variable {p : Policy}

def small (p : Policy) : Bool := decide (p.users.length < U16_MAX) && decide (p.domains.length < U16_MAX)

theorem small_iff : p.small ↔ p.users.length < U16_MAX ∧ p.domains.length < U16_MAX := by simp [small]

def Stands (p : Policy) (c : Ctx) : Given → Prop
  | .boot => False
  | .names u d => p.userName c.user = some u ∧ p.domainName c.domain = some d
  | .gone => ∀ label, p.rights c.user c.domain label = Rights.NONE

def Agree (p : Policy) (c : Ctx) : Given → Prop
  | .boot => c = .BOOT
  | .names u d => c ≠ .BOOT ∧ p.userName c.user = some u ∧ p.domainName c.domain = some d
  | .gone => c = .GONE ∧ p.domains.length < U16_MAX

theorem userName_some {i : Nat} {u : Name} : p.userName i = some u ↔ (p.users.map User.name)[i]? = some u := by
  rw [List.getElem?_map]
  rfl

theorem domainName_some {i : Nat} {d : Name} : p.domainName i = some d ↔ (p.domains.map Domain.name)[i]? = some d := by
  rw [List.getElem?_map]
  rfl

theorem gone_beyond (small : p.domains.length < U16_MAX) : p.domains[Ctx.GONE.domain]? = none :=
  List.getElem?_eq_none (Nat.le_sub_one_of_lt small)

theorem gone_rights (small : p.domains.length < U16_MAX) (u : Nat) (label : Label) :
    p.rights u Ctx.GONE.domain label = Rights.NONE := by
  simp only [rights, gone_beyond small]

theorem Agree.stands {c : Ctx} {g : Given} (agree : p.Agree c g) (other : c ≠ .BOOT) : p.Stands c g := by
  cases g with
  | boot => exact other agree
  | names u d => exact agree.2
  | gone =>
    obtain ⟨rfl, small⟩ := agree
    exact gone_rights small _

theorem nodup_idxOf {names : List Name} (distinct : names.Nodup) {i : Nat} {name : Name} (at_ : names[i]? = some name) :
    name ∈ names ∧ names.idxOf name = i := by
  obtain ⟨below, rfl⟩ := List.getElem?_eq_some_iff.mp at_
  exact ⟨List.getElem_mem below, distinct.idxOf_getElem i below⟩

theorem Agree.rights_eq (wf : p.Wf) {c : Ctx} {g : Given} (agree : p.Agree c g) (label : Label) :
    p.rights (p.current c).1 (p.current c).2 label = p.rightsFor g label := by
  cases g with
  | boot =>
    rw [show c = .BOOT from agree]
    rfl
  | names u d =>
    obtain ⟨other, user, domain⟩ := agree
    obtain ⟨userMem, userAt⟩ := nodup_idxOf wf.users (userName_some.mp user)
    obtain ⟨domainMem, domainAt⟩ := nodup_idxOf wf.domains (domainName_some.mp domain)
    simp only [current, if_neg other, rightsFor, hasUser, hasDomain, List.contains_iff_mem.mpr userMem,
      List.contains_iff_mem.mpr domainMem, Bool.and_self, if_true, userAt, domainAt]
  | gone =>
    obtain ⟨rfl, small⟩ := agree
    exact gone_rights small _ label

theorem Agree.allowed_eq (wf : p.Wf) {c : Ctx} {g : Given} (agree : p.Agree c g) (o : Object) (need : Rights) :
    p.allowed c o need = p.decides g o need := by
  rw [allowed, decides, agree.rights_eq wf]

theorem agree_given (small : p.small) {user domain : Nat} (userBelow : user < p.users.length)
    (domainBelow : domain < p.domains.length) : p.Agree ⟨user, domain⟩ (p.given ⟨user, domain⟩) := by
  have userAt : p.userName user = some p.users[user].name := by simp [userName, userBelow]
  have domainAt : p.domainName domain = some p.domains[domain].name := by simp [domainName, domainBelow]
  simp only [given, userAt, domainAt]
  exact ⟨ne_boot_of_small (small_iff.mp small).1 userBelow, userAt, domainAt⟩

theorem loginDomain_agree (wf : p.Wf) (small : p.small) {uid domain : Nat} (login : p.loginDomain uid = some domain) :
    p.Agree ⟨uid, domain⟩ (p.given ⟨uid, domain⟩) := by
  obtain ⟨u, at_, login⟩ := Option.bind_eq_some_iff.mp login
  obtain ⟨below, rfl⟩ := List.getElem?_eq_some_iff.mp at_
  refine agree_given small below ?_
  split at login
  · cases login
  · rcases Option.or_eq_some_iff.mp login with own | ⟨_, default⟩
    · exact wf.logins _ (List.getElem_mem below) domain own
    · exact wf.login domain default

theorem execDomain_below (wf : p.Wf) {user domain : Nat} {path : List Name} (found : p.execDomain user path = some domain) :
    user < p.users.length ∧ domain < p.domains.length := by
  obtain ⟨rule, _, found⟩ := Option.bind_eq_some_iff.mp found
  obtain ⟨u, at_, found⟩ := Option.bind_eq_some_iff.mp found
  obtain ⟨below, rfl⟩ := List.getElem?_eq_some_iff.mp at_
  exact Lib.guarded found fun enters => ⟨below, wf.enters _ (List.getElem_mem below) _ (List.contains_iff_mem.mp enters)⟩

theorem execCtx_agree (wf : p.Wf) (small : p.small) {c c' : Ctx} {g : Given} {path : List Name} (agree : p.Agree c g)
    (entered : p.execCtx c path = some c') : p.Agree c' (p.execGiven g c') := by
  refine Lib.mapped entered fun domain found => ?_
  obtain ⟨userBelow, domainBelow⟩ := execDomain_below wf found
  have own := agree_given small userBelow domainBelow
  cases g with
  | boot => exact own
  | gone => exact own
  | names u d =>
    obtain ⟨other, user, _⟩ := agree
    have domainAt : p.domainName domain = some p.domains[domain].name := by simp [domainName, domainBelow]
    simp only [execGiven, domainAt]
    refine ⟨ne_boot_of_small (small_iff.mp small).1 userBelow, ?_, domainAt⟩
    rw [if_neg other]
    exact user

end Policy

theorem remapped_agree {old new : Policy} (small : new.small) {c : Ctx} {g : Given} (agree : old.Agree c g) :
    new.Agree (remapped old new c) (g.under new) := by
  obtain ⟨usersSmall, domainsSmall⟩ := Policy.small_iff.mp small
  cases g with
  | boot =>
    rw [show c = .BOOT from agree]
    rfl
  | gone =>
    obtain ⟨rfl, oldSmall⟩ := agree
    have beyond : old.domainName Ctx.GONE.domain = none := by
      rw [Policy.domainName, Policy.gone_beyond oldSmall]
      rfl
    have gone : remapped old new .GONE = .GONE := by
      unfold remapped
      rw [if_neg (by decide), beyond]
      cases (old.userName Ctx.GONE.user).bind new.userId <;> rfl
    exact ⟨gone, domainsSmall⟩
  | names u d =>
    obtain ⟨other, user, domain⟩ := agree
    unfold remapped
    rw [if_neg other, user, domain]
    dsimp only [Option.bind_some]
    cases userAt : new.userId u with
    | none =>
      have lacks : new.hasUser u = false := by
        simpa [Policy.hasUser] using position_none.mp userAt
      simp only [Given.under, lacks, Bool.false_and]
      exact ⟨rfl, domainsSmall⟩
    | some i =>
      cases domainAt : new.domainId d with
      | none =>
        have lacks : new.hasDomain d = false := by
          simpa [Policy.hasDomain] using position_none.mp domainAt
        simp only [Given.under, lacks, Bool.and_false]
        exact ⟨rfl, domainsSmall⟩
      | some j =>
        have userName := position_some userAt (by rwa [List.length_map])
        have domainName := position_some domainAt (by rwa [List.length_map])
        have hasUser : new.hasUser u := List.contains_iff_mem.mpr (List.mem_of_getElem? userName)
        have hasDomain : new.hasDomain d := List.contains_iff_mem.mpr (List.mem_of_getElem? domainName)
        simp only [Given.under, hasUser, hasDomain, Bool.and_self, if_true]
        have below : i < (new.users.map User.name).length := (List.getElem?_eq_some_iff.mp userName).1
        rw [List.length_map] at below
        exact ⟨ne_boot_of_small usersSmall below, Policy.userName_some.mpr userName,
          Policy.domainName_some.mpr domainName⟩

namespace Reload

def Op.publishes : Op → Bool
  | .publish _ => true
  | _ => false

namespace State

variable {s s' : State}

/-- Every process has the names it was last given, or no rights once a policy lacked one of them, and every check was decided
as one of the policies does for the names. -/
structure KeepsNames (s : State) : Prop where
  names : ∀ pid c, s.ctx pid = some c → c ≠ .BOOT → ∃ p ∈ s.tables, p.Stands c (s.given pid)
  decided : s.odd = false

/-- A policy's contexts are remapped while no other call is under way, and nothing comes between that and its publication;
no policy has `2 ^ 16 - 1` users or domains. -/
def reloadsAlone (s : State) (e : Event) : Bool :=
  s.policy.1.small &&
    match e with
    | .start _ call => (match call with
        | .load new => new.1.small
        | _ => true) && !s.ops.any (·.2.publishes)
    | .go k =>
      match s.ops[k]? with
      | some (_, .publish _) => true
      | some (_, .remap _ _) => decide (s.ops.length = 1)
      | _ => !s.ops.any (·.2.publishes)
    | .abandon _ => !s.ops.any (·.2.publishes)

def goalFits (p : Parsed) : Goal → Prop
  | .access => True
  | .enter q _ => q = p
  | .load new => new.1.small

def opFits (p : Parsed) : Op → Prop
  | .ask goal _ _ => goalFits p goal
  | .check goal _ _ c g before => goalFits p goal ∧ p.1.Agree c g ∧ before = p
  | .store c g | .exec _ c g | .fork _ c g => p.1.Agree c g
  | .load new => new.1.small
  | .remap old new => old = p ∧ new.1.small
  | .publish _ => False

def AllAgree (s : State) (p : Policy) : Prop := ∀ pid c, s.ctx pid = some c → p.Agree c (s.given pid)

structure Settled (s : State) : Prop where
  agree : s.AllAgree s.policy.1
  fits : ∀ op ∈ s.ops, opFits s.policy op.2

def Publishing (s : State) : Prop := ∃ pid new, s.ops = [(pid, .publish new)] ∧ s.AllAgree new.1

structure Inv (s : State) : Prop where
  phase : s.Settled ∨ s.Publishing
  decided : s.odd = false

theorem Inv.keepsNames (inv : Inv s) : s.KeepsNames where
  names pid c has other := by
    rcases inv.phase with settled | ⟨by_, new, ops, agree⟩
    · exact ⟨s.policy.1, List.mem_cons_self, (settled.agree pid c has).stands other⟩
    · refine ⟨new.1, ?_, (agree pid c has).stands other⟩
      simp [tables, ops]
  decided := inv.decided

theorem next_odd (s : State) (k pid : Nat) (op : Option Op) : (s.next k pid op).odd = s.odd := by
  cases op <;> rfl

theorem Settled.set (settled : s.Settled) (k pid : Nat) {op : Option Op} (fits : ∀ o, op = some o → opFits s.policy o) :
    (s.next k pid op).Settled := by
  cases op with
  | none => exact ⟨settled.agree, fun o mem => settled.fits o (List.mem_of_mem_eraseIdx mem)⟩
  | some o =>
    refine ⟨settled.agree, fun o' mem => ?_⟩
    rcases List.mem_or_eq_of_mem_set mem with old | rfl
    · exact settled.fits o' old
    · exact fits o rfl

theorem Settled.give {pid : Nat} {c : Ctx} {g : Given} (settled : s.Settled) (agree : s.policy.1.Agree c g) :
    (s.give pid c g).Settled := by
  refine ⟨fun other c' has => ?_, settled.fits⟩
  by_cases same : other = pid
  · subst same
    simp only [State.give, Function.update_self, Option.some.injEq] at has ⊢
    exact has ▸ agree
  · simp only [State.give, Function.update_of_ne same] at has ⊢
    exact settled.agree other c' has

theorem setuser_fits (small : s.policy.1.small) {name : Name} {hash : Name → List UInt8} {op : Op}
    (begun : s.setuser name hash = some op) : opFits s.policy op := by
  obtain ⟨uid, _, begun⟩ := Option.bind_eq_some_iff.mp begun
  obtain ⟨u, _, begun⟩ := Option.bind_eq_some_iff.mp begun
  split at begun
  · split at begun
    · obtain ⟨domain, login, rfl⟩ := Option.map_eq_some_iff.mp begun
      exact Policy.loginDomain_agree s.policy.2 small login
    · cases begun
  · cases begun
    rfl

theorem begun_fits (settled : s.Settled) (small : s.policy.1.small) {pid : Nat} {c : Ctx} (has : s.ctx pid = some c)
    {call : Call} (loads : ∀ new, call = .load new → new.1.small) {op : Op} (begun : s.begun pid c call = some op) :
    opFits s.policy op := by
  have agree := settled.agree pid c has
  cases call with
  | setuser name hash => exact setuser_fits small begun
  | check o need =>
    cases begun
    exact ⟨trivial, agree, rfl⟩
  | exec path | fork child =>
    cases begun
    exact agree
  | load new =>
    cases begun
    exact ⟨loads new rfl, agree, rfl⟩

theorem after_fits (p : Parsed) (small : p.1.small) {goal : Goal} (fits : goalFits p goal) {allowed : Bool} {op : Op}
    (next : after allowed goal = some op) : opFits p op := by
  cases goal with
  | access => cases next
  | enter q uid =>
    obtain rfl := fits
    obtain ⟨_, login⟩ := Option.ite_none_right_eq_some.mp next
    exact Lib.mapped login fun domain entered => Policy.loginDomain_agree q.2 small entered
  | load new =>
    exact Lib.guarded next fun _ => fits

theorem Settled.goOn (settled : s.Settled) (decided : s.odd = false) (small : s.policy.1.small) {k pid : Nat} {op : Op}
    (at_ : s.ops[k]? = some (pid, op)) (alone : ∀ old new, op = .remap old new → s.ops.length = 1)
    (stepped : s.goOn k pid op = some s') : Inv s' := by
  have fits : opFits s.policy op := settled.fits _ (List.mem_of_getElem? at_)
  cases op with
  | ask goal o need =>
    refine Lib.mapped stepped fun c has => ?_
    refine ⟨.inl (settled.set k pid ?_), decided⟩
    rintro _ ⟨⟩
    exact ⟨fits, settled.agree pid c has, rfl⟩
  | check goal o need c g before =>
    cases stepped
    obtain ⟨goalFits, agree, rfl⟩ := fits
    have next : (s.next k pid (after (s.policy.1.allowed c o need) goal)).Settled :=
      settled.set k pid fun _ same => after_fits s.policy small goalFits same
    refine ⟨.inl ⟨next.agree, next.fits⟩, ?_⟩
    simp only [decided, Bool.false_or, Bool.not_eq_false', List.any_cons, Bool.or_eq_true]
    exact .inl (beq_iff_eq.mpr (agree.allowed_eq s.policy.2 o need).symm)
  | store c g =>
    cases stepped
    exact ⟨.inl ((settled.give fits).set k pid fun _ same => nomatch same), decided⟩
  | exec path c g =>
    cases stepped
    refine ⟨.inl (settled.set k pid fun o same => ?_), (s.next_odd k pid _).trans decided⟩
    exact Lib.mapped same fun c' entered => Policy.execCtx_agree s.policy.2 small fits entered
  | load new =>
    cases stepped
    refine ⟨.inl (settled.set k pid ?_), decided⟩
    rintro _ ⟨⟩
    exact ⟨rfl, fits⟩
  | remap old new =>
    cases stepped
    obtain ⟨rfl, newSmall⟩ := fits
    refine ⟨.inr ⟨pid, new, ?_, ?_⟩, decided⟩
    · obtain ⟨only, one⟩ := List.length_eq_one_iff.mp (alone _ _ rfl)
      have first : k = 0 := by
        have below := (List.getElem?_eq_some_iff.mp at_).1
        rw [one] at below
        simpa using below
      simp [State.next, one, first]
    · intro pid c' has
      exact Lib.mapped has fun c had => remapped_agree newSmall (settled.agree pid c had)
  | publish new => exact fits.elim
  | fork child c g =>
    exact Lib.guarded stepped fun _ => ⟨.inl ((settled.give fits).set k pid fun _ same => nomatch same), decided⟩

theorem Settled.step (settled : s.Settled) (decided : s.odd = false) {e : Event} (met : s.reloadsAlone e)
    (stepped : s.step e = some s') : Inv s' := by
  obtain ⟨small, alone⟩ := Bool.and_eq_true_iff.mp met
  cases e with
  | start pid call =>
    refine Lib.mapped stepped fun c has => ?_
    have loads : ∀ new, call = .load new → new.1.small := by
      rintro new rfl
      exact (Bool.and_eq_true_iff.mp alone).1
    split
    next op begun =>
      refine ⟨.inl ⟨settled.agree, fun o mem => ?_⟩, decided⟩
      rcases List.mem_append.mp mem with old | new
      · exact settled.fits o old
      · rw [List.mem_singleton.mp new]
        exact begun_fits settled small has loads begun
    · exact ⟨.inl settled, decided⟩
  | go k =>
    obtain ⟨⟨pid, op⟩, at_, stepped⟩ := Option.bind_eq_some_iff.mp stepped
    refine settled.goOn decided small at_ ?_ stepped
    rintro old new rfl
    simpa [at_] using alone
  | abandon k =>
    have kept : Inv { s with ops := s.ops.eraseIdx k } :=
      ⟨.inl ⟨settled.agree, fun o mem => settled.fits o (List.mem_of_mem_eraseIdx mem)⟩, decided⟩
    simp only [State.step] at stepped
    split at stepped <;> first | exact Option.some.inj stepped ▸ kept | cases stepped

theorem Publishing.step (publishing : s.Publishing) (decided : s.odd = false) {e : Event} (met : s.reloadsAlone e)
    (stepped : s.step e = some s') : Inv s' := by
  obtain ⟨by_, new, ops, agree⟩ := publishing
  have busy : s.ops.any (·.2.publishes) = true := by simp [ops, Op.publishes]
  have alone := (Bool.and_eq_true_iff.mp met).2
  cases e with
  | start pid call => simp [busy] at alone
  | abandon k => simp [busy] at alone
  | go k =>
    cases k with
    | zero =>
      simp only [State.step, ops, List.getElem?_cons_zero, Option.bind_some, State.goOn] at stepped
      cases stepped
      refine ⟨.inl ⟨agree, fun o mem => ?_⟩, decided⟩
      simp [State.next] at mem
    | succ k => simp [State.step, ops] at stepped

theorem Inv.step (inv : Inv s) {e : Event} (met : s.reloadsAlone e) (stepped : s.step e = some s') : Inv s' := by
  rcases inv.phase with settled | publishing
  · exact settled.step inv.decided met stepped
  · exact publishing.step inv.decided met stepped

theorem boot_inv (p : Parsed) : Inv (boot p) := by
  refine ⟨.inl ⟨fun pid c has => ?_, fun _ mem => nomatch mem⟩, rfl⟩
  exact (Option.some.inj (Option.ite_none_right_eq_some.mp has).2).symm

theorem reach_keepsNames (reachable : system.Reach (fun s e => s.reloadsAlone e) s) : s.KeepsNames := by
  have inv : Inv s := by
    refine reachable.invariant ?_ fun _ _ _ inv met stepped => inv.step met stepped
    rintro _ ⟨p, rfl⟩
    exact boot_inv p
  exact inv.keepsNames

def twoUsers (names : List Name) (distinct : names.Nodup) (positive : 0 < names.length) : Parsed where
  val := {
    enforcing := true
    users := names.map fun name => ⟨name, [], [0], some 0, false, some ([], name)⟩
    groups := []
    domains := [⟨word "init", [⟨.any, .any, Rights.ALL⟩]⟩]
    kinds := [UNLABELED]
    labels := []
    execs := []
    login := none
    boot := (0, 0) }
  property := {
    users := by simpa [Function.comp_def] using distinct
    domains := List.nodup_singleton _
    boot := ⟨by simpa using positive, Nat.zero_lt_one⟩
    enters := by simp
    logins := by simp
    login := by simp }

def forward : Parsed := twoUsers [word "system", word "alice"] (by decide) (by decide)

def backward : Parsed := twoUsers [word "alice", word "system"] (by decide) (by decide)

def forked : List Event := [.start 1 (.fork 2), .go 0]

def loginRun : List Event :=
  forked ++ [.start 2 (.setuser (word "alice") fun _ => word "alice"), .go 0, .start 1 (.load backward), .go 0, .go 0, .go 0,
    .go 0]

theorem loginRun_ends :
    (system.runMeeting (fun s e => s.reloadsAlone e = true) (boot forward) loginRun).isSome := by
  decide +kernel

theorem reach_keepsNames_login :
    ((system.runMeeting (fun s e => s.reloadsAlone e = true) (boot forward) loginRun).get loginRun_ends).KeepsNames :=
  reach_keepsNames ((boot_reached _ forward).runMeeting loginRun (Option.some_get _).symm)

def crossedRun : List Event :=
  forked ++ [.start 2 (.setuser (word "alice") fun _ => word "alice"), .start 1 (.load backward), .go 1, .go 1, .go 1, .go 1,
    .go 0]

theorem crossedRun_ends : (system.run (boot forward) crossedRun).isSome := by decide +kernel

theorem crossed_login_is_system : ¬∀ s, system.Reach Lib.System.Any s → s.KeepsNames := by
  intro all
  have reached := (boot_reached Lib.System.Any forward).run crossedRun (Option.some_get crossedRun_ends).symm
  have stored : ((system.run (boot forward) crossedRun).get crossedRun_ends).ctx 2 = some ⟨1, 0⟩ := by decide +kernel
  have tables : ((system.run (boot forward) crossedRun).get crossedRun_ends).tables.map (·.userName 1) =
      [some (word "system")] := by decide +kernel
  obtain ⟨p, mem, stands⟩ := (all _ reached).names 2 _ stored (by decide)
  have name := List.mem_map_of_mem (f := (·.userName 1)) mem
  rw [tables, List.mem_singleton] at name
  exact absurd (name.symm.trans stands.1) (by decide)

end State
end Reload
end Myos.Sec
